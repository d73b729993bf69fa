import Latchwork.Plan.Basic
import Latchwork.Proofs.Places

/-!
# Extracting files

What extracting one file of a plan can do, said once: how far it gets, the tree it leaves and its
reports. Whatever happens, no directory and no file is taken away.
-/

namespace Latchwork

open Outcome

/-! ## Contents -/

/-- What is written to the file of a content, if that file is opened at all. -/
def FileContent.opening? : FileContent → Option Bytes
  | .text t => t.utf8.toOption
  | .bytes b => some b
  | .foreign _ => some []

namespace FileContent

/-- A content with bytes is written as them. -/
theorem opening?_of_toBytes {content : FileContent} {bytes : Bytes}
    (h : content.toBytes = .ok bytes) : content.opening? = some bytes := by
  cases content with
  | text t =>
    have ht : t.utf8 = .ok bytes := h
    simp [opening?, ht, Except.toOption]
  | bytes b =>
    cases h
    rfl
  | foreign v => cases h

private theorem opening?_eq_none {content : FileContent} (h : content.opening? = none) :
    ∃ t cause, content = .text t ∧ t.utf8 = .error cause := by
  cases content with
  | text t =>
    cases ht : t.utf8 with
    | error cause => exact ⟨t, cause, rfl, ht⟩
    | ok bytes => simp [opening?, ht, Except.toOption] at h
  | bytes b => cases h
  | foreign v => cases h

private theorem opening?_eq_some {content : FileContent} {bytes : Bytes}
    (h : content.opening? = some bytes) : content.toBytes.toOption.getD [] = bytes := by
  cases content with
  | text t =>
    have ht : t.utf8.toOption = some bytes := h
    simp [toBytes, ht]
  | bytes b => exact Option.some.inj h
  | foreign v => exact Option.some.inj h

end FileContent

namespace Plan

variable {root : Path} {e : Extraction} {name : Text} {content : FileContent}

/-- The path of a file below the root directory. -/
def targetOf (root : Path) (name : Text) : Path := root.append (Path.ofText name).steps

/-- The steps of a name without steps up are ordinary. -/
theorem isOrdinary_of_mem {name : Text} (hup : Path.up ∉ (Path.ofText name).steps) :
    ∀ s ∈ (Path.ofText name).steps, Path.IsOrdinary s :=
  fun s hs => ⟨Path.isPlain_ofText name s hs, fun h => hup (h ▸ hs)⟩

/-- The report that a file is opened. -/
def writing (path : Path) : LogEntry := .info ("Writing to '" ++ path.text ++ "'")

/-! ## One file -/

/-- What extracting one file can do: it is refused for a step up, its directory cannot be made, its
text cannot be encoded, its file cannot be opened, or the file is opened and, if the content has
bytes, written. -/
inductive Extracting (root : Path) (e : Extraction) (name : Text) (content : FileContent) :
    Extraction × Except Error Unit → Prop
  | parentStep (hup : Path.up ∈ (Path.ofText name).steps) :
    Extracting root e name content (e, .error .parentStep)
  | unmade {tree : FileTree} {cause : Error} (hup : Path.up ∉ (Path.ofText name).steps)
    (hmake : e.tree.makeDirectories (targetOf root name).parent = (tree, .error cause)) :
    Extracting root e name content ({ e with tree := tree }, .error cause)
  | unencodable {tree : FileTree} {cause : Error} (hup : Path.up ∉ (Path.ofText name).steps)
    (hmake : e.tree.makeDirectories (targetOf root name).parent = (tree, .ok ()))
    (hopening : content.opening? = none) :
    Extracting root e name content ({ e with tree := tree }, .error cause)
  | unopened {tree : FileTree} {cause : Error} {bytes : Bytes}
    (hup : Path.up ∉ (Path.ofText name).steps)
    (hmake : e.tree.makeDirectories (targetOf root name).parent = (tree, .ok ()))
    (hopening : content.opening? = some bytes)
    (hwrite : tree.write (targetOf root name).text bytes = .error cause) :
    Extracting root e name content
      (⟨tree, e.logs ++ [writing (targetOf root name)]⟩, .error cause)
  | emptied {tree written : FileTree} {cause : Error}
    (hup : Path.up ∉ (Path.ofText name).steps)
    (hmake : e.tree.makeDirectories (targetOf root name).parent = (tree, .ok ()))
    (hopening : content.opening? = some []) (hbytes : content.toBytes = .error cause)
    (hwrite : tree.write (targetOf root name).text [] = .ok written) :
    Extracting root e name content
      (⟨written, e.logs ++ [writing (targetOf root name)]⟩, .error cause)
  | written {tree written : FileTree} {bytes : Bytes} {detail : Text}
    (hup : Path.up ∉ (Path.ofText name).steps)
    (hmake : e.tree.makeDirectories (targetOf root name).parent = (tree, .ok ()))
    (hbytes : content.toBytes = .ok bytes)
    (hwrite : tree.write (targetOf root name).text bytes = .ok written) :
    Extracting root e name content
      (⟨written, e.logs ++ [writing (targetOf root name)] ++ [.debug detail]⟩, .ok ())

/-- Once a file is opened, its content is written to it. -/
theorem extractFile_of_opening {tree : FileTree} {bytes : Bytes}
    (hup : Path.up ∉ (Path.ofText name).steps)
    (hmake : e.tree.makeDirectories (targetOf root name).parent = (tree, .ok ()))
    (hopening : content.opening? = some bytes) :
    extractFile root e name content =
      writeContent (targetOf root name).text { e with tree := tree } content.toBytes := by
  unfold extractFile
  simp only [List.contains_eq_mem, hup, decide_false, Bool.false_eq_true, if_false]
  rw [show root.append (Path.ofText name).steps = targetOf root name from rfl, hmake]
  cases content with
  | text t =>
    cases ht : t.utf8 with
    | error cause => simp [FileContent.opening?, ht, Except.toOption] at hopening
    | ok bytes => simp [FileContent.toBytes, ht]
  | bytes b => rfl
  | foreign v => rfl

/-- A file that is opened and written leaves the tree so, and fails only if its content has no
bytes. -/
theorem extractFile_of_write {tree written : FileTree} {bytes : Bytes}
    (hup : Path.up ∉ (Path.ofText name).steps)
    (hmake : e.tree.makeDirectories (targetOf root name).parent = (tree, .ok ()))
    (hopening : content.opening? = some bytes)
    (hwrite : tree.write (targetOf root name).text bytes = .ok written) :
    (extractFile root e name content).1.tree = written ∧
      (extractFile root e name content).2 = content.toBytes.map fun _ => () := by
  rw [extractFile_of_opening hup hmake hopening]
  unfold writeContent
  rw [FileContent.opening?_eq_some hopening]
  cases content.toBytes <;> simp [hwrite, Except.map]

theorem extracting (root : Path) (e : Extraction) (name : Text) (content : FileContent) :
    Extracting root e name content (extractFile root e name content) := by
  by_cases hup : Path.up ∈ (Path.ofText name).steps
  · have hrefused : extractFile root e name content = (e, .error .parentStep) := by
      simp [extractFile, hup]
    rw [hrefused]
    exact .parentStep hup
  cases hmake : e.tree.makeDirectories (targetOf root name).parent with
  | mk tree result =>
  have hmake' : e.tree.makeDirectories (root.append (Path.ofText name).steps).parent =
      (tree, result) := hmake
  cases result with
  | error cause =>
    have hunmade : extractFile root e name content = ({ e with tree := tree }, .error cause) := by
      simp [extractFile, hup, hmake']
    rw [hunmade]
    exact .unmade hup hmake
  | ok _ =>
  cases hopening : content.opening? with
  | none =>
    obtain ⟨t, cause, rfl, ht⟩ := FileContent.opening?_eq_none hopening
    have hrefused : extractFile root e name (.text t) =
        ({ e with tree := tree }, .error cause) := by
      simp [extractFile, hup, hmake', FileContent.toBytes, ht]
    rw [hrefused]
    exact .unencodable hup hmake hopening
  | some bytes =>
    rw [extractFile_of_opening hup hmake hopening]
    have hbytes := FileContent.opening?_eq_some hopening
    unfold writeContent
    rw [hbytes]
    cases hwrite : tree.write (targetOf root name).text bytes with
    | error cause => exact .unopened hup hmake hopening hwrite
    | ok written =>
      cases hcontent : content.toBytes with
      | error cause =>
        have hnil : bytes = [] := by simpa [hcontent, Except.toOption] using hbytes.symm
        subst hnil
        exact .emptied hup hmake hopening hcontent hwrite
      | ok bytes' =>
        have heq : bytes' = bytes := by simpa [hcontent, Except.toOption] using hbytes
        subst heq
        exact .written hup hmake hcontent hwrite

/-- Extracting a file takes no directory and no file away. -/
theorem Extracting.grows {r : Extraction × Except Error Unit}
    (h : Extracting root e name content r) : e.tree.Grows r.1.tree := by
  have hgrows := e.tree.grows_makeDirectories (targetOf root name).parent
  cases h with
  | parentStep => exact .refl _
  | unmade _ hmake => rwa [hmake] at hgrows
  | unencodable _ hmake => rwa [hmake] at hgrows
  | unopened _ hmake => rwa [hmake] at hgrows
  | emptied _ hmake _ _ hwrite =>
    rw [hmake] at hgrows
    exact hgrows.trans (FileTree.grows_write hwrite)
  | written _ hmake _ hwrite =>
    rw [hmake] at hgrows
    exact hgrows.trans (FileTree.grows_write hwrite)

/-! ## All files -/

/-- Files that follow one that is written are extracted after it. -/
theorem extractFiles_cons_ok {e' : Extraction} {rest : List (Text × FileContent)}
    (h : extractFile root e name content = (e', .ok ())) :
    extractFiles root e ((name, content) :: rest) = extractFiles root e' rest := by
  simp [extractFiles, h]

/-- Nothing is extracted after a file that cannot be written. -/
theorem extractFiles_cons_error {e' : Extraction} {rest : List (Text × FileContent)}
    {cause : Error} (h : extractFile root e name content = (e', .error cause)) :
    extractFiles root e ((name, content) :: rest) = (e', .error cause) := by
  simp [extractFiles, h]

/-- Extracting files takes no directory and no file away. -/
theorem grows_extractFiles (root : Path) (e : Extraction) (files : List (Text × FileContent)) :
    e.tree.Grows (extractFiles root e files).1.tree := by
  induction files generalizing e with
  | nil => exact .refl _
  | cons f rest ih =>
    obtain ⟨name, content⟩ := f
    have hgrows := (extracting root e name content).grows
    cases hfile : extractFile root e name content with
    | mk e' result =>
    rw [hfile] at hgrows
    cases result with
    | error cause =>
      rw [extractFiles_cons_error hfile]
      exact hgrows
    | ok _ =>
      rw [extractFiles_cons_ok hfile]
      exact hgrows.trans (ih e')

/-- What the first file leaves stays as the other files are extracted. -/
theorem grows_extractFiles_cons (root : Path) (e : Extraction) (f : Text × FileContent)
    (rest : List (Text × FileContent)) :
    (extractFile root e f.1 f.2).1.tree.Grows (extractFiles root e (f :: rest)).1.tree := by
  obtain ⟨name, content⟩ := f
  cases hfile : extractFile root e name content with
  | mk e' result =>
  cases result with
  | error cause =>
    rw [extractFiles_cons_error hfile]
    exact .refl _
  | ok _ =>
    rw [extractFiles_cons_ok hfile]
    exact grows_extractFiles root e' rest

/-- The report that a directory is made. -/
def creating (root : Path) : LogEntry := .info ("Creating directory '" ++ root.text ++ "/'")

/-- Once the root directory is made, the files are extracted in order. -/
theorem extract_of_makeDirectories {p : Plan} {tree made : FileTree}
    (h : tree.makeDirectories root = (made, .ok ())) :
    p.extract tree root =
      ((extractFiles root ⟨made, [creating root]⟩ p.files).1,
        (extractFiles root ⟨made, [creating root]⟩ p.files).2.map fun _ => root.place) := by
  unfold extract
  rw [h]
  rfl

end Plan

end Latchwork
