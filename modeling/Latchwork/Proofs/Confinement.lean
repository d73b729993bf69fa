import Latchwork.Proofs.Extraction

/-!
# Extraction stays inside its directory

Whatever names the files of a plan have, extracting the plan makes directories and opens files only
at its root directory and below it, also if it fails on the way. The accesses of an extraction are
listed in order: from the tree in which the root directory has been made they give the tree that the
extraction leaves, and the files among them are those that it reports to write.
-/

namespace Latchwork

/-! ## Accesses to a file tree -/

/-- What an extraction does to a file tree: it makes the directory of a path, or opens the file of a
path and writes to it. -/
inductive FileAccess where
  | made (path : Path)
  | opened (path : Path) (content : Bytes)

namespace FileAccess

/-- The path that is used. -/
def path : FileAccess → Path
  | .made path => path
  | .opened path _ => path

/-- What an access leaves of a tree. A file that cannot be opened changes nothing. -/
def apply (t : FileTree) : FileAccess → FileTree
  | .made path => t.addDirectory path
  | .opened path content => (t.write path.text content).toOption.getD t

/-- What is reported before a file is opened. -/
def report? : FileAccess → Option LogEntry
  | .made _ => none
  | .opened path _ => some (Plan.writing path)

private theorem find?_apply {a : FileAccess} {t : FileTree} {q : Place} (hplain : a.path.IsPlain)
    (hq : q ≠ a.path.target) : (a.apply t).find? q = t.find? q := by
  cases a with
  | made path => exact FileTree.find?_set_of_ne hq
  | opened path content =>
    change ((t.write path.text content).toOption.getD t).find? q = t.find? q
    cases hwrite : t.write path.text content with
    | error cause => rfl
    | ok u =>
      change u.find? q = t.find? q
      obtain ⟨p, hopen, ⟨-, rfl⟩ | ⟨-, rfl⟩⟩ := FileTree.write_eq_ok.1 hwrite
      · rfl
      · obtain ⟨-, -, -, rfl, -⟩ := (FileTree.openForWriting_text hplain).1 hopen
        exact FileTree.find?_set_of_ne hq

private theorem find?_foldl_apply {accesses : List FileAccess} {t : FileTree} {q : Place}
    (h : ∀ a ∈ accesses, a.path.IsPlain ∧ q ≠ a.path.target) :
    (accesses.foldl apply t).find? q = t.find? q := by
  induction accesses generalizing t with
  | nil => rfl
  | cons a rest ih =>
    rw [List.foldl_cons, ih fun a ha => h a (.tail _ ha)]
    exact find?_apply (h a (.head _)).1 (h a (.head _)).2

private theorem foldl_apply_made (t : FileTree) (path : Path) :
    ((t.made path).map made).foldl apply t = (t.makeDirectories path).1 := by
  rw [FileTree.makeDirectories_fst, List.foldl_map]
  rfl

private theorem filterMap_report?_made (paths : List Path) : (paths.map made).filterMap report? =
    [] := by
  simp [List.filterMap_map, Function.comp_def, report?]

end FileAccess

/-! ## The accesses of an extraction -/

/-- A path as seen from another one: if it is absolute, it stands alone. -/
def Path.join (root path : Path) : Path :=
  if path.slashes = 0 then root.append path.steps else path

namespace Plan

/-- The plan that is left by attempts to add files, some of which may be refused. -/
def filled (name : Value) (calls : List (Value × FileContent)) : Plan :=
  calls.foldl (fun p call => (p.addOf call.1 call.2).toOption.getD p) (empty name)

/-- The accesses for one file. -/
def fileAccesses (root : Path) (tree : FileTree) (name : Text) (content : FileContent) :
    List FileAccess :=
  if Path.up ∈ (Path.ofText name).steps then []
  else
    let target := root.join (Path.ofText name)
    (tree.made target.parent).map .made ++
      if (tree.makeDirectories target.parent).2.isOk then
        content.opening?.toList.map (.opened target)
      else []

/-- The accesses for files in order, up to the first that cannot be written. -/
def filesAccesses (root : Path) (e : Extraction) : List (Text × FileContent) → List FileAccess
  | [] => []
  | (name, content) :: rest =>
    let (next, result) := extractFile root e name content
    fileAccesses root e.tree name content ++
      if result.isOk then filesAccesses root next rest else []

/-- The accesses of an extraction, once its root directory is there. -/
def accesses (p : Plan) (tree : FileTree) (root : Path) : List FileAccess :=
  let (made, result) := tree.makeDirectories root
  if result.isOk then filesAccesses root ⟨made, [creating root]⟩ p.files else []

private theorem isAbsoluteName_of_add {p q : Plan} {name : Text} {content : FileContent}
    (h : p.add name content = .ok q) : isAbsoluteName name = false := by
  unfold add at h
  split at h
  · cases h
  · split at h
    · cases h
    next habsolute => simpa using habsolute

/-- A file with a new name that is not absolute can be added. -/
theorem exists_add {p : Plan} {name : Text} (content : FileContent)
    (hnew : name ∉ p.files.map Prod.fst) (habsolute : isAbsoluteName name = false) :
    ∃ q, p.add name content = .ok q := by
  unfold add
  rw [dif_neg hnew, habsolute]
  exact ⟨_, rfl⟩

/-- No file of a plan that was filled has an absolute name. -/
theorem isAbsoluteName_of_filled (name : Value) (calls : List (Value × FileContent)) :
    ∀ f ∈ (filled name calls).files, isAbsoluteName f.1 = false := by
  refine Outcome.foldl_induct
    (P := fun _ (p : Plan) => ∀ f ∈ p.files, isAbsoluteName f.1 = false) (by simp [empty]) ?_
  intro before call after p _ hp
  cases hadd : p.addOf call.1 call.2 with
  | error e => exact hp
  | ok q =>
    unfold addOf at hadd
    split at hadd
    next name _ =>
      intro f hf
      have hf : f ∈ q.files := hf
      rw [files_of_add hadd, List.mem_append, List.mem_singleton] at hf
      rcases hf with hf | rfl
      · exact hp f hf
      · exact isAbsoluteName_of_add hadd
    next => cases hadd

private theorem slashes_eq_zero {name : Text} (h : isAbsoluteName name = false) :
    (Path.ofText name).slashes = 0 := by
  have hhead : name.points.head? ≠ some (.char '/') := by
    intro hhead
    simp [isAbsoluteName, hhead] at h
  have hcount : name.points.takeWhile (· == CodePoint.char '/') = [] := by
    cases hpoints : name.points with
    | nil => rfl
    | cons point rest =>
      rw [List.takeWhile_cons_of_neg]
      simpa [hpoints] using hhead
  simp [Path.ofText, hcount]

private theorem relative_of_filled (name : Value) (calls : List (Value × FileContent)) :
    ∀ f ∈ (filled name calls).files, (Path.ofText f.1).slashes = 0 :=
  fun f hf => slashes_eq_zero (isAbsoluteName_of_filled name calls f hf)

/-! ## Accesses and what they leave -/

variable {root : Path} {e : Extraction} {name : Text}
  {files : List (Text × FileContent)}

private theorem fileAccesses_effect {tree : FileTree} {result : Except Error Unit}
    (content : FileContent) (hname : (Path.ofText name).slashes = 0)
    (hup : Path.up ∉ (Path.ofText name).steps)
    (hmake : e.tree.makeDirectories (targetOf root name).parent = (tree, result)) :
    (fileAccesses root e.tree name content).foldl FileAccess.apply e.tree =
        (if result.isOk then content.opening?.toList.map (.opened (targetOf root name))
          else []).foldl FileAccess.apply tree ∧
      (fileAccesses root e.tree name content).filterMap FileAccess.report? =
        (if result.isOk then content.opening?.toList.map (.opened (targetOf root name))
          else []).filterMap FileAccess.report? := by
  have htarget : root.join (Path.ofText name) = targetOf root name := if_pos hname
  rw [fileAccesses, if_neg hup, htarget, List.foldl_append, FileAccess.foldl_apply_made,
    List.filterMap_append, FileAccess.filterMap_report?_made, hmake]
  exact ⟨rfl, rfl⟩

/-- What extracting one file does is what its accesses do in order. -/
theorem extractFile_accesses (root : Path) (e : Extraction) (content : FileContent)
    (hname : (Path.ofText name).slashes = 0) :
    (extractFile root e name content).1.tree =
        (fileAccesses root e.tree name content).foldl FileAccess.apply e.tree ∧
      (extractFile root e name content).1.logs.filter (·.level == .info) =
        e.logs.filter (·.level == .info) ++
          (fileAccesses root e.tree name content).filterMap FileAccess.report? := by
  have hcases := extracting root e name content
  generalize extractFile root e name content = r at hcases
  have hinfo (path : Path) : (writing path).level = .info := rfl
  have hdebug (detail : Text) : (LogEntry.debug detail).level = .debug := rfl
  cases hcases with
  | parentStep hup => simp [fileAccesses, hup]
  | unmade hup hmake =>
    obtain ⟨htree, hreports⟩ := fileAccesses_effect content hname hup hmake
    rw [htree, hreports]
    simp [Except.isOk, Except.toBool]
  | unencodable hup hmake hopening =>
    obtain ⟨htree, hreports⟩ := fileAccesses_effect content hname hup hmake
    rw [htree, hreports, hopening]
    simp
  | unopened hup hmake hopening hwrite =>
    obtain ⟨htree, hreports⟩ := fileAccesses_effect content hname hup hmake
    rw [htree, hreports, hopening]
    simp [Except.isOk, Except.toBool, FileAccess.apply, hwrite, FileAccess.report?, hinfo,
      Except.toOption]
  | emptied hup hmake hopening hbytes hwrite =>
    obtain ⟨htree, hreports⟩ := fileAccesses_effect content hname hup hmake
    rw [htree, hreports, hopening]
    simp [Except.isOk, Except.toBool, FileAccess.apply, hwrite, FileAccess.report?, hinfo,
      Except.toOption]
  | written hup hmake hbytes hwrite =>
    obtain ⟨htree, hreports⟩ := fileAccesses_effect content hname hup hmake
    rw [htree, hreports, FileContent.opening?_of_toBytes hbytes]
    simp [Except.isOk, Except.toBool, FileAccess.apply, hwrite, FileAccess.report?, hinfo, hdebug,
      Except.toOption]

/-- The accesses for one file stay at the root directory and below. -/
theorem fileAccesses_confined (content : FileContent) (hroot : e.tree.HasDirectory root)
    (hname : (Path.ofText name).slashes = 0) :
    ∀ a ∈ fileAccesses root e.tree name content,
      ∃ steps, (∀ s ∈ steps, Path.IsOrdinary s) ∧ a.path = root.append steps := by
  intro a ha
  unfold fileAccesses at ha
  split_ifs at ha with hup
  · cases ha
  have htarget : root.join (Path.ofText name) = targetOf root name := if_pos hname
  have hordinary := isOrdinary_of_mem hup
  rw [htarget] at ha
  rcases List.mem_append.1 ha with ha | ha
  · obtain ⟨q, hq, rfl⟩ := List.mem_map.1 ha
    by_cases hnil : (Path.ofText name).steps = []
    · -- The directory above the root directory is there.
      have hparent : (targetOf root name).parent = root.parent := by
        simp [targetOf, hnil, Path.append]
      rw [hparent, hroot.parent.made_eq_nil] at hq
      cases hq
    · have hparent : (targetOf root name).parent =
          root.append (Path.ofText name).steps.dropLast := by
        simp [targetOf, Path.parent, Path.append, List.dropLast_append_of_ne_nil hnil]
      rw [hparent] at hq
      obtain ⟨before, -, hinit, rfl⟩ := hroot.of_mem_made hq
      exact ⟨before, fun s hs => hordinary s (List.mem_of_mem_dropLast (hinit.subset hs)), rfl⟩
  · split_ifs at ha
    · obtain ⟨bytes, -, rfl⟩ := List.mem_map.1 ha
      exact ⟨_, hordinary, rfl⟩
    · cases ha

/-- What extracting files does is what their accesses do in order, and these stay at the root
directory and below. -/
theorem filesAccesses_spec (hroot : e.tree.HasDirectory root)
    (hfiles : ∀ f ∈ files, (Path.ofText f.1).slashes = 0) :
    (extractFiles root e files).1.tree =
        (filesAccesses root e files).foldl FileAccess.apply e.tree ∧
      (extractFiles root e files).1.logs.filter (·.level == .info) =
        e.logs.filter (·.level == .info) ++
          (filesAccesses root e files).filterMap FileAccess.report? ∧
      ∀ a ∈ filesAccesses root e files,
        ∃ steps, (∀ s ∈ steps, Path.IsOrdinary s) ∧ a.path = root.append steps := by
  induction files generalizing e with
  | nil => simp [extractFiles, filesAccesses]
  | cons f rest ih =>
    obtain ⟨name, content⟩ := f
    have hname : (Path.ofText name).slashes = 0 := hfiles _ (.head _)
    have hconfined := fileAccesses_confined content hroot hname
    obtain ⟨htree, hlogs⟩ := extractFile_accesses root e content hname
    have hgrows := (extracting root e name content).grows
    rw [filesAccesses]
    cases hfile : extractFile root e name content with
    | mk next result =>
    rw [hfile] at htree hlogs hgrows
    cases result with
    | error cause =>
      rw [extractFiles_cons_error hfile]
      simp only [Except.isOk, Except.toBool, Bool.false_eq_true, if_false, List.append_nil]
      exact ⟨htree, hlogs, hconfined⟩
    | ok _ =>
      rw [extractFiles_cons_ok hfile]
      simp only [Except.isOk, Except.toBool, if_true]
      obtain ⟨ihtree, ihlogs, ihconfined⟩ := ih (hroot.mono hgrows)
        fun f hf => hfiles f (.tail _ hf)
      rw [List.foldl_append, List.filterMap_append, ← htree, ← List.append_assoc, ← hlogs]
      refine ⟨ihtree, ihlogs, fun a ha => ?_⟩
      rcases List.mem_append.1 ha with ha | ha
      · exact hconfined a ha
      · exact ihconfined a ha

/-- What an extraction does once its root directory is made is what its accesses do in order, and
these stay at the root directory and below. -/
theorem accesses_spec {p : Plan} (hfiles : ∀ f ∈ p.files, (Path.ofText f.1).slashes = 0)
    (tree : FileTree) (root : Path) :
    (p.extract tree root).1.tree =
        (p.accesses tree root).foldl FileAccess.apply (tree.makeDirectories root).1 ∧
      (p.extract tree root).1.logs.filter (·.level == .info) =
        creating root :: (p.accesses tree root).filterMap FileAccess.report? ∧
      ∀ a ∈ p.accesses tree root,
        ∃ steps, (∀ s ∈ steps, Path.IsOrdinary s) ∧ a.path = root.append steps := by
  have hinfo : (creating root).level = .info := rfl
  unfold accesses
  cases hmake : tree.makeDirectories root with
  | mk made result =>
  cases result with
  | error cause =>
    have hextract : p.extract tree root = (⟨made, [creating root]⟩, .error cause) := by
      unfold extract
      rw [hmake]
      rfl
    rw [hextract]
    simp [Except.isOk, Except.toBool, hinfo]
  | ok _ =>
    have hroot := FileTree.hasDirectory_of_makeDirectories hmake
    have hspec := filesAccesses_spec (e := ⟨made, [creating root]⟩) hroot hfiles
    rw [extract_of_makeDirectories hmake]
    simpa [Except.isOk, Except.toBool, hinfo] using hspec

/-- Extraction opens files and makes directories only at its root directory and below, by ordinary
steps: its accesses account for the tree that it leaves and for its reports, and no place outside is
touched. -/
theorem extract_isConfined (name : Value) (calls : List (Value × FileContent)) (tree : FileTree)
    (root : Text) :
    let p := filled name calls
    let directory := Path.ofText root
    let made := (tree.makeDirectories directory).1
    let left := (p.extract tree directory).1
    left.tree = (p.accesses tree directory).foldl FileAccess.apply made ∧
      left.logs.filter (·.level == .info) =
        creating directory :: (p.accesses tree directory).filterMap FileAccess.report? ∧
      (∀ a ∈ p.accesses tree directory,
        ∃ steps, (∀ s ∈ steps, Path.IsOrdinary s) ∧ a.path = directory.append steps) ∧
      ∀ q, left.tree.find? q ≠ made.find? q →
        ∃ steps, Path.up ∉ steps ∧ q = directory.target.below steps := by
  intro p directory made left
  obtain ⟨htree, hlogs, hconfined⟩ :=
    accesses_spec (relative_of_filled name calls) tree directory
  refine ⟨htree, hlogs, hconfined, fun q hq => ?_⟩
  by_contra hout
  refine hq ?_
  unfold left
  rw [htree]
  refine FileAccess.find?_foldl_apply fun a ha => ?_
  obtain ⟨steps, hsteps, hpath⟩ := hconfined a ha
  rw [hpath, Path.target_append_ordinary hsteps]
  refine ⟨(Path.isPlain_ofText root).append fun s hs => (hsteps s hs).toIsStep, ?_⟩
  exact fun h => hout ⟨_, Path.up_not_mem_stored hsteps, h⟩

end Plan

end Latchwork
