import Latchwork.Proofs.Extraction

/-!
# When an extraction is all or nothing

An extraction into an empty directory should make every file of a plan readable, or fail without
writing any. File names are compared by their spelling when a plan is filled, but two spellings may
lead to one place, and a step up is noticed only at its file. So the extraction is all or nothing
exactly if the files do not stand in each other's way, or the first one is refused before it is
opened.
-/

namespace Latchwork

open Outcome

namespace FileTree

/-- Is nothing below a place? -/
def IsEmptyBelow (t : FileTree) (p : Place) : Prop :=
  ∀ steps, steps ≠ [] → Path.up ∉ steps → t.find? (p.below steps) = none

/-- Are all paths on the way below a directory within the limits of a file system? -/
structure Fits (root : Path) (steps : List Text) : Prop where
  spelled : Spelled root steps
  storable : ∀ s ∈ steps, s.IsStorable
  depth : (root.append steps).steps.length ≤ makingLimit

/-- What a tree holds once a file is written below a directory: the file, directories on the way to
it, and elsewhere what was there. -/
structure Wrote (t u : FileTree) (root : Path) (steps : List Text) (content : Bytes) : Prop where
  leads : u.Leads root.origin (root.append steps).steps
  file : u.find? (root.append steps).target = some (.file content)
  directory {before : List Text} : before <+: steps → before ≠ steps →
    u.find? (root.append before).target = some .directory
  other {q : Place} : (∀ before, before ≠ [] → before <+: steps → q ≠ (root.append before).target) →
    u.find? q = t.find? q

/-! ## Writing one file -/

/-- A file that is there once a directory has been made was there before. -/
theorem file_of_makeDirectories {t : FileTree} (path : Path) {q : Place} {content : Bytes}
    (h : (t.makeDirectories path).1.find? q = some (.file content)) :
    t.find? q = some (.file content) := by
  rw [makeDirectories_fst] at h
  generalize t.made path = made at h
  induction made generalizing t with
  | nil => exact h
  | cons p rest ih =>
    have hfile : (t.set p.target .directory).find? q = some (.file content) := ih h
    by_cases hq : q = p.target
    · subst hq
      cases hstanding : standing? p.target with
      | none => simp [find?_set_self hstanding] at hfile
      | some entry =>
        rw [find?, hstanding] at hfile
        exact absurd (hstanding.trans hfile) (standing?_ne_file _ content)
    · rwa [find?_set_of_ne hq] at hfile

/-- Directories are made below one that is there, within the limits and where nothing but
directories is met, and elsewhere the tree keeps what it held. -/
theorem HasDirectory.exists_made {t : FileTree} {root : Path} {steps : List Text}
    (hroot : t.HasDirectory root) (hsteps : ∀ s ∈ steps, Path.IsOrdinary s)
    (hfits : Fits root steps)
    (hfree : ∀ before, before ≠ [] → before <+: steps →
      t.find? (root.append before).target = none ∨
        t.find? (root.append before).target = some .directory) :
    ∃ made, t.makeDirectories (root.append steps) = (made, .ok ()) ∧
      made.HasDirectory (root.append steps) ∧
      ∀ q, (∀ before, before ≠ [] → before <+: steps → q ≠ (root.append before).target) →
        made.find? q = t.find? q := by
  have hmake : (t.makeDirectories (root.append steps)).2 = .ok () :=
    hroot.makeDirectories_ok hfits.spelled (fun s hs => ⟨hsteps s hs, hfits.storable s hs⟩)
      hfits.depth hfree
  have hmade : t.makeDirectories (root.append steps) =
      ((t.makeDirectories (root.append steps)).1, .ok ()) := Prod.ext rfl hmake
  refine ⟨_, hmade, hasDirectory_of_makeDirectories hmade, fun q hq => ?_⟩
  refine find?_makeDirectories fun p hp => ?_
  obtain ⟨before, hbefore, hinit, rfl⟩ := hroot.of_mem_made hp
  exact hq before hbefore hinit

private theorem Fits.of_append {root : Path} {init rest : List Text}
    (h : Fits root (init ++ rest)) :
    Fits root init := by
  refine ⟨(spelled_append.1 h.spelled).1, fun s hs => h.storable s (List.mem_append_left _ hs), ?_⟩
  have hdepth := h.depth
  simp only [Path.append, List.length_append] at hdepth ⊢
  omega

private theorem target_append_ne {root : Path} {init before : List Text} {last : Text}
    (hsteps : ∀ s ∈ init ++ [last], Path.IsOrdinary s) (hbefore : before <+: init) :
    (root.append (init ++ [last])).target ≠ (root.append before).target := by
  rw [Path.target_append_ordinary hsteps, Path.target_append_ordinary fun s hs =>
    hsteps s (List.mem_append_left _ (hbefore.subset hs))]
  intro heq
  have hlength := congrArg List.length (Place.below_inj.1 heq)
  have hle := hbefore.length_le
  simp only [List.length_map, List.length_append, List.length_singleton] at hlength
  omega

/-- A file that is put below a directory which is there. -/
theorem HasDirectory.wrote {t made : FileTree} {root : Path} {init : List Text} {last : Text}
    (hthere : made.HasDirectory (root.append init))
    (hsame : ∀ q, (∀ before, before ≠ [] → before <+: init → q ≠ (root.append before).target) →
      made.find? q = t.find? q)
    (hleads : made.Leads root.origin (root.append (init ++ [last])).steps)
    (hdir : made.find? (root.append (init ++ [last])).target ≠ some .directory)
    (hdev : made.find? (root.append (init ++ [last])).target ≠ some .device) (content : Bytes) :
    t.Wrote (made.set (root.append (init ++ [last])).target (.file content)) root (init ++ [last])
      content := by
  have hgrows : made.Grows (made.set (root.append (init ++ [last])).target (.file content)) :=
    grows_set_file hdir hdev
  constructor
  · exact hleads.mono hgrows
  · exact find?_set_self (standing?_eq_none hdir hdev)
  · intro before hinit hproper
    rcases List.prefix_concat_iff.1 hinit with h | h
    · exact absurd h hproper
    · exact hgrows.directory (hthere.find?_prefix h)
  · intro q hq
    rw [find?_set_of_ne (hq _ (by simp) (List.prefix_refl _))]
    exact hsame q fun before hbefore hinit =>
      hq before hbefore (hinit.trans (List.prefix_append ..))

/-- A file can be written within the limits where nothing but directories is met on the way, and no
directory or device at its place. -/
theorem HasDirectory.exists_wrote {t : FileTree} {root : Path} {steps : List Text}
    (hroot : t.HasDirectory root) (hplain : root.IsPlain)
    (hsteps : ∀ s ∈ steps, Path.IsOrdinary s) (hne : steps ≠ []) (hfits : Fits root steps)
    (hway : ∀ before, before ≠ [] → before <+: steps → before ≠ steps →
      t.find? (root.append before).target = none ∨
        t.find? (root.append before).target = some .directory)
    (hdir : t.find? (root.append steps).target ≠ some .directory)
    (hdev : t.find? (root.append steps).target ≠ some .device) :
    ∃ made, t.makeDirectories (root.append steps).parent = (made, .ok ()) ∧
      ∀ content, ∃ u, made.write (root.append steps).text content = .ok u ∧
        t.Wrote u root steps content := by
  obtain ⟨init, last, rfl⟩ : ∃ init last, steps = init ++ [last] := by
    simpa [hne] using List.eq_nil_or_concat steps
  have hparent : (root.append (init ++ [last])).parent = root.append init := by
    simp [Path.parent, Path.append, ← List.append_assoc]
  have hproper {before : List Text} (h : before <+: init) : before ≠ init ++ [last] := by
    rintro rfl
    simpa using h.length_le
  obtain ⟨made, hmade, hthere, hsame⟩ := hroot.exists_made
    (fun s hs => hsteps s (List.mem_append_left _ hs)) hfits.of_append
    fun before hbefore hinit =>
      hway before hbefore (hinit.trans (List.prefix_append ..)) (hproper hinit)
  have htarget : made.find? (root.append (init ++ [last])).target =
      t.find? (root.append (init ++ [last])).target :=
    hsame _ fun before _ hinit => target_append_ne hsteps hinit
  rw [← htarget] at hdir hdev
  have hleads : made.Leads root.origin (root.append (init ++ [last])).steps := by
    have hsplit : (root.append (init ++ [last])).steps = (root.append init).steps ++ [last] := by
      simp [Path.append]
    rw [hsplit, leads_append]
    exact ⟨hthere.leads, hthere.directory, hfits.storable last (by simp), trivial⟩
  have hopen : made.openForWriting (root.append (init ++ [last])).text =
      .ok (root.append (init ++ [last])).target :=
    (openForWriting_text (hplain.append fun s hs => (hsteps s hs).toIsStep)).2
      ⟨by simp [Path.append], hfits.spelled.text hne, hleads, rfl, hdir⟩
  exact ⟨made, by rw [hparent, hmade], fun content =>
    ⟨_, write_eq_ok.2 ⟨_, hopen, .inr ⟨hdev, rfl⟩⟩, hthere.wrote hsame hleads hdir hdev content⟩⟩

end FileTree

namespace Plan

/-- The steps of a file name as they are stored. -/
def storedSteps (name : Text) : List Text := (Path.ofText name).steps.map Text.stored

private theorem target_targetOf {root : Path} {name : Text}
    (hup : Path.up ∉ (Path.ofText name).steps) :
    (targetOf root name).target = root.target.below (storedSteps name) :=
  Path.target_append_ordinary (isOrdinary_of_mem hup)

/-- Can all files be written, and does none stand where another one or its directories should? Two
files may have one place only if they hold the same. -/
structure IsCoherent (files : List (Text × FileContent)) : Prop where
  parentStep : ∀ f ∈ files, Path.up ∉ (Path.ofText f.1).steps
  named : ∀ f ∈ files, (Path.ofText f.1).steps ≠ []
  encodable : ∀ f ∈ files, ∃ bytes, f.2.toBytes = .ok bytes
  apart : ∀ f ∈ files, ∀ g ∈ files, storedSteps f.1 <+: storedSteps g.1 →
    storedSteps f.1 = storedSteps g.1 ∧ f.2.toBytes = g.2.toBytes

private theorem isCoherent_nil : IsCoherent [] := ⟨by simp, by simp, by simp, by simp⟩

/-- Is the first file refused before it is opened? -/
def IsBlocked (files : List (Text × FileContent)) : Prop :=
  ∃ f, files.head? = some f ∧
    (Path.up ∈ (Path.ofText f.1).steps ∨ (Path.ofText f.1).steps = [] ∨ f.2.opening? = none)

/-- Does extraction make every file readable under its name, or fail and leave no file that was not
there? -/
def IsAllOrNothing (p : Plan) (tree : FileTree) (root : Path) : Prop :=
  (∃ place, (p.extract tree root).2 = .ok place ∧
    ∀ f ∈ p.files, ∃ bytes, f.2.toBytes = .ok bytes ∧
      (p.extract tree root).1.tree.read (targetOf root f.1).text = .ok bytes) ∨
  ∃ cause, (p.extract tree root).2 = .error cause ∧
    ∀ q content, (p.extract tree root).1.tree.find? q = some (.file content) →
      tree.find? q = some (.file content)

/-! ## Coherent files -/

/-- What a tree holds below the root directory once some files are written: the files, and
directories on the way to them. -/
structure Extracted (root : Path) (done : List (Text × FileContent)) (t : FileTree) : Prop where
  directory : t.HasDirectory root
  file : ∀ g ∈ done, t.Leads root.origin (targetOf root g.1).steps ∧
    ∃ bytes, g.2.toBytes = .ok bytes ∧ t.find? (targetOf root g.1).target = some (.file bytes)
  only : ∀ steps, steps ≠ [] → Path.up ∉ steps → t.find? (root.target.below steps) = none ∨
    (t.find? (root.target.below steps) = some .directory ∧
      ∃ g ∈ done, steps <+: storedSteps g.1 ∧ steps ≠ storedSteps g.1) ∨
    ∃ g ∈ done, steps = storedSteps g.1

/-- Nothing has been written to an empty directory. -/
theorem extracted_nil {root : Path} {t : FileTree} (hroot : t.HasDirectory root)
    (hempty : t.IsEmptyBelow root.target) : Extracted root [] t :=
  ⟨hroot, by simp, fun steps hne hup => .inl (hempty steps hne hup)⟩

variable {root : Path} {files done : List (Text × FileContent)} {f : Text × FileContent}
  {t u : FileTree}

private theorem eq_of_map_stored {before : List Text} (h : before <+: (Path.ofText f.1).steps)
    (heq : before.map Text.stored = storedSteps f.1) : before = (Path.ofText f.1).steps := by
  refine h.eq_of_length ?_
  simpa [storedSteps] using congrArg List.length heq

private theorem target_initial (hup : Path.up ∉ (Path.ofText f.1).steps) {before : List Text}
    (h : before <+: (Path.ofText f.1).steps) :
    (root.append before).target = root.target.below (before.map Text.stored) :=
  Path.target_append_ordinary fun s hs => isOrdinary_of_mem hup s (h.subset hs)

/-- What has been written stays as another file of a coherent plan is written. -/
theorem Extracted.wrote (h : Extracted root done t) (hcoherent : IsCoherent files)
    (hdone : ∀ g ∈ done, g ∈ files) (hf : f ∈ files) {bytes : Bytes}
    (hbytes : f.2.toBytes = .ok bytes)
    (hwrote : t.Wrote u root (Path.ofText f.1).steps bytes) (hgrows : t.Grows u) :
    Extracted root (done ++ [f]) u := by
  have hup := hcoherent.parentStep f hf
  refine ⟨h.directory.mono hgrows, fun g hg => ?_, fun steps hne hsteps => ?_⟩
  · rcases List.mem_append.1 hg with hg | hg
    · obtain ⟨hleads, old, hold, hfile⟩ := h.file g hg
      refine ⟨hleads.mono hgrows, old, hold, ?_⟩
      by_cases hq : ∃ before, before ≠ [] ∧ before <+: (Path.ofText f.1).steps ∧
          (targetOf root g.1).target = (root.append before).target
      · -- The new file lies at the old one, so they hold the same.
        obtain ⟨before, -, hinit, hplace⟩ := hq
        rw [target_targetOf (hcoherent.parentStep g (hdone g hg)), target_initial hup hinit,
          Place.below_inj] at hplace
        obtain ⟨hsteps, hsame⟩ := hcoherent.apart g (hdone g hg) f hf
          (by rw [hplace]; exact hinit.map _)
        rw [hold, hbytes] at hsame
        cases hsame
        rw [target_targetOf (hcoherent.parentStep g (hdone g hg)), hsteps, ← target_targetOf hup]
        exact hwrote.file
      · rw [hwrote.other fun before hbefore hinit hplace =>
          hq ⟨before, hbefore, hinit, hplace⟩]
        exact hfile
    · rw [List.mem_singleton.1 hg]
      exact ⟨hwrote.leads, bytes, hbytes, hwrote.file⟩
  · by_cases hq : ∃ before, before ≠ [] ∧ before <+: (Path.ofText f.1).steps ∧
        root.target.below steps = (root.append before).target
    · obtain ⟨before, -, hinit, hplace⟩ := hq
      have heq : steps = before.map Text.stored := by
        rwa [target_initial hup hinit, Place.below_inj] at hplace
      by_cases hwhole : before = (Path.ofText f.1).steps
      · exact .inr (.inr ⟨f, by simp, by rw [heq, hwhole]; rfl⟩)
      · refine .inr (.inl ⟨by rw [hplace]; exact hwrote.directory hinit hwhole, f, by simp, ?_⟩)
        rw [heq]
        exact ⟨hinit.map _, fun h => hwhole (eq_of_map_stored hinit h)⟩
    · rw [hwrote.other fun before hbefore hinit hplace =>
        hq ⟨before, hbefore, hinit, hplace⟩]
      rcases h.only steps hne hsteps with hnone | ⟨hdir, g, hg, hproper⟩ | ⟨g, hg, hwhole⟩
      · exact .inl hnone
      · exact .inr (.inl ⟨hdir, g, by simp [hg], hproper⟩)
      · exact .inr (.inr ⟨g, by simp [hg], hwhole⟩)

/-- The next file of a coherent plan can be written. -/
theorem Extracted.exists_wrote (h : Extracted root done t) (hplain : root.IsPlain)
    (hcoherent : IsCoherent files) (hdone : ∀ g ∈ done, g ∈ files) (hf : f ∈ files)
    (hfits : FileTree.Fits root (Path.ofText f.1).steps) :
    ∃ made, t.makeDirectories (targetOf root f.1).parent = (made, .ok ()) ∧
      ∀ content, ∃ u, made.write (targetOf root f.1).text content = .ok u ∧
        t.Wrote u root (Path.ofText f.1).steps content := by
  have hup := hcoherent.parentStep f hf
  have hnamed := hcoherent.named f hf
  have hfree : t.find? (targetOf root f.1).target = none ∨
      ∃ content, t.find? (targetOf root f.1).target = some (.file content) := by
    rw [target_targetOf hup]
    rcases h.only (storedSteps f.1) (by simpa [storedSteps] using hnamed)
        (Path.up_not_mem_stored (isOrdinary_of_mem hup)) with
      hnone | ⟨-, g, hg, hinit, hproper⟩ | ⟨g, hg, hwhole⟩
    · exact .inl hnone
    · exact absurd (hcoherent.apart f hf g (hdone g hg) hinit).1 hproper
    · obtain ⟨-, bytes, -, hfile⟩ := h.file g hg
      rw [target_targetOf (hcoherent.parentStep g (hdone g hg)), ← hwhole] at hfile
      exact .inr ⟨bytes, hfile⟩
  refine h.directory.exists_wrote hplain (isOrdinary_of_mem hup) hnamed hfits ?_ ?_ ?_
  · intro before hbefore hinit hproper
    rw [target_initial hup hinit]
    rcases h.only (before.map Text.stored) (by simpa using hbefore)
        (Path.up_not_mem_stored fun s hs => isOrdinary_of_mem hup s (hinit.subset hs)) with
      hnone | ⟨hdir, -⟩ | ⟨g, hg, hwhole⟩
    · exact .inl hnone
    · exact .inr hdir
    · -- A file on the way would be a file that stands in the way.
      have hsame := (hcoherent.apart g (hdone g hg) f hf (by rw [← hwhole]; exact hinit.map _)).1
      exact absurd (eq_of_map_stored hinit (hwhole.trans hsame)) hproper
  · change t.find? (targetOf root f.1).target ≠ some .directory
    rcases hfree with hnone | ⟨content, hfile⟩ <;> simp [*]
  · change t.find? (targetOf root f.1).target ≠ some .device
    rcases hfree with hnone | ⟨content, hfile⟩ <;> simp [*]

/-- The files of a coherent plan are written one after another. -/
theorem Extracted.run (hplain : root.IsPlain) (hcoherent : IsCoherent files)
    (hfits : ∀ f ∈ files, FileTree.Fits root (Path.ofText f.1).steps)
    {rest : List (Text × FileContent)} {e : Extraction} (hsplit : files = done ++ rest)
    (h : Extracted root done e.tree) :
    ∃ e', extractFiles root e rest = (e', .ok ()) ∧ Extracted root files e'.tree := by
  induction rest generalizing done e with
  | nil => exact ⟨e, rfl, by simpa [hsplit] using h⟩
  | cons f rest ih =>
    have hdone : ∀ g ∈ done, g ∈ files := fun g hg => by simp [hsplit, hg]
    have hf : f ∈ files := by simp [hsplit]
    obtain ⟨bytes, hbytes⟩ := hcoherent.encodable f hf
    obtain ⟨made, hmake, hwrite⟩ := h.exists_wrote hplain hcoherent hdone hf (hfits f hf)
    obtain ⟨u, hu, hwrote⟩ := hwrite bytes
    obtain ⟨name, content⟩ := f
    obtain ⟨htree, hresult⟩ := extractFile_of_write (hcoherent.parentStep _ hf) hmake
      (FileContent.opening?_of_toBytes hbytes) hu
    have hgrows := (extracting root e name content).grows
    cases hfile : extractFile root e name content with
    | mk e' result =>
    rw [hfile] at htree hresult hgrows
    obtain rfl : result = .ok () := hresult.trans (by rw [hbytes]; rfl)
    subst htree
    rw [extractFiles_cons_ok hfile]
    refine ih ?_ (h.wrote hcoherent hdone hf hbytes hwrote hgrows)
    simp [hsplit]

private theorem isPlain_targetOf (hplain : root.IsPlain) (name : Text) :
    (targetOf root name).IsPlain :=
  hplain.append (Path.isPlain_ofText name)

/-- A file that has been written can be read. -/
theorem Extracted.read (h : Extracted root files t) (hplain : root.IsPlain)
    (hcoherent : IsCoherent files) (hf : f ∈ files)
    (hfits : FileTree.Fits root (Path.ofText f.1).steps) :
    ∃ bytes, f.2.toBytes = .ok bytes ∧ t.read (targetOf root f.1).text = .ok bytes := by
  have hnamed := hcoherent.named f hf
  obtain ⟨hleads, bytes, hbytes, hfile⟩ := h.file f hf
  refine ⟨bytes, hbytes, (FileTree.read_text (isPlain_targetOf hplain f.1)).2 ?_⟩
  exact ⟨by simp [targetOf, Path.append, hnamed], hfits.spelled.text hnamed, hleads, .inl hfile⟩

/-- In an extraction that succeeds no name has a step up. -/
theorem parentStep_of_extractFiles {e e' : Extraction}
    (h : extractFiles root e files = (e', .ok ())) :
    ∀ f ∈ files, Path.up ∉ (Path.ofText f.1).steps := by
  induction files generalizing e with
  | nil => simp
  | cons f rest ih =>
    obtain ⟨name, content⟩ := f
    have hcases := extracting root e name content
    cases hfile : extractFile root e name content with
    | mk next result =>
    cases result with
    | error cause =>
      rw [extractFiles_cons_error hfile] at h
      simp at h
    | ok _ =>
      rw [extractFiles_cons_ok hfile] at h
      rw [hfile] at hcases
      intro f hf
      rcases List.mem_cons.1 hf with rfl | hf
      · cases hcases with
        | written hup => exact hup
      · exact ih h f hf

/-- Files that can all be read do not stand in each other's way. -/
theorem isCoherent_of_read (hplain : root.IsPlain) (hroot : t.HasDirectory root)
    (hup : ∀ f ∈ files, Path.up ∉ (Path.ofText f.1).steps)
    (hread : ∀ f ∈ files, ∃ bytes, f.2.toBytes = .ok bytes ∧
      t.read (targetOf root f.1).text = .ok bytes) : IsCoherent files := by
  have hentry (f) (hf : f ∈ files) : ∃ bytes, f.2.toBytes = .ok bytes ∧
      t.Leads root.origin (targetOf root f.1).steps ∧
        (t.find? (targetOf root f.1).target = some (.file bytes) ∨
          t.find? (targetOf root f.1).target = some .device ∧ bytes = []) := by
    obtain ⟨bytes, hbytes, h⟩ := hread f hf
    obtain ⟨-, -, hleads, hfind⟩ := (FileTree.read_text (isPlain_targetOf hplain f.1)).1 h
    exact ⟨bytes, hbytes, hleads, hfind⟩
  have hnotDirectory (f) (hf : f ∈ files) :
      t.find? (targetOf root f.1).target ≠ some .directory := by
    obtain ⟨bytes, -, -, hfind | ⟨hfind, -⟩⟩ := hentry f hf <;> simp [hfind]
  refine ⟨hup, ?_, fun f hf => (hentry f hf).imp fun _ h => h.1, ?_⟩
  · intro f hf hnil
    refine hnotDirectory f hf ?_
    simpa [targetOf, hnil, Path.append] using hroot.directory
  · intro f hf g hg hinit
    obtain ⟨bytes, hbytes, -, hfind⟩ := hentry f hf
    obtain ⟨bytes', hbytes', hleads, hfind'⟩ := hentry g hg
    have hplace : (targetOf root f.1).target = root.target.below (storedSteps f.1) :=
      target_targetOf (hup f hf)
    have hsame : storedSteps f.1 = storedSteps g.1 := by
      by_contra hproper
      obtain ⟨before, hbefore, hstored⟩ : ∃ before, before <+: (Path.ofText g.1).steps ∧
          before.map Text.stored = storedSteps f.1 :=
        ⟨_, List.take_prefix (storedSteps f.1).length _, by
          rw [List.map_take]; exact (List.prefix_iff_eq_take.1 hinit).symm⟩
      -- The file would be a directory on the way to the other one.
      have hdir := hleads.find?_prefix hbefore
        (fun h => hproper (by rw [← hstored, h]; rfl))
      rw [target_initial (hup g hg) hbefore, hstored, ← hplace] at hdir
      exact hnotDirectory f hf hdir
    rw [hplace, hsame, ← target_targetOf (hup g hg)] at hfind
    refine ⟨hsame, ?_⟩
    rw [hbytes, hbytes']
    rcases hfind with h | ⟨h, rfl⟩ <;> rcases hfind' with h' | ⟨h', rfl⟩ <;> simp_all

/-! ## Files that are refused -/

/-- A file that is refused before it is opened makes the extraction fail, and no file is written. -/
theorem extractFile_blocked {e : Extraction} (hplain : root.IsPlain)
    (hroot : e.tree.HasDirectory root)
    (h : Path.up ∈ (Path.ofText f.1).steps ∨ (Path.ofText f.1).steps = [] ∨ f.2.opening? = none) :
    ∃ e' cause, extractFile root e f.1 f.2 = (e', .error cause) ∧
      ∀ q content, e'.tree.find? q = some (.file content) →
        e.tree.find? q = some (.file content) := by
  have hkept {tree : FileTree} {result : Except Error Unit}
      (hmake : e.tree.makeDirectories (targetOf root f.1).parent = (tree, result)) (q : Place)
      (content : Bytes) (hfile : tree.find? q = some (.file content)) :
      e.tree.find? q = some (.file content) :=
    FileTree.file_of_makeDirectories (targetOf root f.1).parent (by rwa [hmake])
  have hopened {tree written : FileTree} {bytes : Bytes}
      (hup : Path.up ∉ (Path.ofText f.1).steps)
      (hmake : e.tree.makeDirectories (targetOf root f.1).parent = (tree, .ok ()))
      (hopening : f.2.opening? = some bytes)
      (hwrite : tree.write (targetOf root f.1).text bytes = .ok written) : False := by
    rcases h with h | h | h
    · exact hup h
    · -- The file would be the root directory itself.
      obtain ⟨q, hopen, -⟩ := FileTree.write_eq_ok.1 hwrite
      obtain ⟨-, -, -, -, hdir⟩ :=
        (FileTree.openForWriting_text (isPlain_targetOf hplain f.1)).1 hopen
      have hgrows := e.tree.grows_makeDirectories (targetOf root f.1).parent
      rw [hmake] at hgrows
      refine hdir ?_
      simpa [targetOf, h, Path.append] using (hroot.mono hgrows).directory
    · rw [h] at hopening
      cases hopening
  have hcases := extracting root e f.1 f.2
  generalize extractFile root e f.1 f.2 = r at hcases
  cases hcases with
  | parentStep => exact ⟨e, _, rfl, fun _ _ h => h⟩
  | unmade _ hmake => exact ⟨_, _, rfl, hkept hmake⟩
  | unencodable _ hmake => exact ⟨_, _, rfl, hkept hmake⟩
  | unopened _ hmake => exact ⟨_, _, rfl, hkept hmake⟩
  | emptied hup hmake hopening _ hwrite => exact (hopened hup hmake hopening hwrite).elim
  | written hup hmake hbytes hwrite =>
    exact (hopened hup hmake (FileContent.opening?_of_toBytes hbytes) hwrite).elim

/-- The first file that is opened in an empty directory stays there. -/
theorem exists_file_of_opening {e : Extraction} (hplain : root.IsPlain)
    (hroot : e.tree.HasDirectory root) (hempty : e.tree.IsEmptyBelow root.target)
    (hup : Path.up ∉ (Path.ofText f.1).steps) (hne : (Path.ofText f.1).steps ≠ [])
    (hfits : FileTree.Fits root (Path.ofText f.1).steps) {bytes : Bytes}
    (hopening : f.2.opening? = some bytes) (rest : List (Text × FileContent)) :
    ∃ content, (extractFiles root e (f :: rest)).1.tree.find? (targetOf root f.1).target =
      some (.file content) := by
  have hnone {before : List Text} (hbefore : before ≠ [])
      (hinit : before <+: (Path.ofText f.1).steps) :
      e.tree.find? (root.append before).target = none := by
    rw [target_initial hup hinit]
    exact hempty _ (by simpa using hbefore)
      (Path.up_not_mem_stored fun s hs => isOrdinary_of_mem hup s (hinit.subset hs))
  have htarget := hnone hne (List.prefix_refl _)
  obtain ⟨made, hmake, hwrite⟩ := hroot.exists_wrote hplain (isOrdinary_of_mem hup) hne hfits
    (fun before hbefore hinit _ => .inl (hnone hbefore hinit)) (by simp [htarget])
    (by simp [htarget])
  obtain ⟨u, hu, hwrote⟩ := hwrite bytes
  have htree := (extractFile_of_write hup hmake hopening hu).1
  have hgrows := grows_extractFiles_cons root e f rest
  rw [htree] at hgrows
  exact hgrows.file hwrote.file

/-- If files are extracted into an empty directory and none is there afterwards, the first one is
refused before it is opened. -/
theorem isBlocked_of_kept {e : Extraction} (hplain : root.IsPlain)
    (hroot : e.tree.HasDirectory root) (hempty : e.tree.IsEmptyBelow root.target)
    (hfits : ∀ f ∈ files, Path.up ∉ (Path.ofText f.1).steps →
      FileTree.Fits root (Path.ofText f.1).steps)
    (hne : files ≠ [])
    (hkept : ∀ q content, (extractFiles root e files).1.tree.find? q = some (.file content) →
      ∃ old, e.tree.find? q = some (.file old)) : IsBlocked files := by
  cases files with
  | nil => exact absurd rfl hne
  | cons f rest =>
    by_contra hblocked
    have hup : Path.up ∉ (Path.ofText f.1).steps := fun h => hblocked ⟨f, rfl, .inl h⟩
    have hnamed : (Path.ofText f.1).steps ≠ [] := fun h => hblocked ⟨f, rfl, .inr (.inl h)⟩
    obtain ⟨bytes, hopening⟩ := Option.ne_none_iff_exists'.1
      fun h => hblocked ⟨f, rfl, .inr (.inr h)⟩
    obtain ⟨content, hfile⟩ := exists_file_of_opening hplain hroot hempty hup hnamed
      (hfits f (.head _) hup) hopening rest
    obtain ⟨old, hold⟩ := hkept _ content hfile
    have hnone := hempty (storedSteps f.1) (by simpa [storedSteps] using hnamed)
      (Path.up_not_mem_stored (isOrdinary_of_mem hup))
    rw [target_targetOf hup, hnone] at hold
    cases hold

private theorem IsBlocked.extractFiles {e : Extraction} (h : IsBlocked files)
    (hplain : root.IsPlain) (hroot : e.tree.HasDirectory root) :
    ∃ e' cause, extractFiles root e files = (e', .error cause) ∧
      ∀ q content, e'.tree.find? q = some (.file content) →
        e.tree.find? q = some (.file content) := by
  obtain ⟨f, hhead, hf⟩ := h
  cases files with
  | nil => cases hhead
  | cons first rest =>
    obtain rfl : first = f := Option.some.inj hhead
    obtain ⟨e', cause, hfile, hkept⟩ := extractFile_blocked hplain hroot hf
    exact ⟨e', cause, extractFiles_cons_error hfile, hkept⟩

/-- Extraction into an empty directory within the limits of the file system is all or nothing
exactly if the files do not stand in each other's way or the first one is refused at once. -/
theorem extract_isAllOrNothing_iff (p : Plan) {tree made : FileTree} {root : Text}
    (hmake : tree.makeDirectories (Path.ofText root) = (made, .ok ()))
    (hempty : made.IsEmptyBelow (Path.ofText root).target)
    (hfits : ∀ f ∈ p.files, Path.up ∉ (Path.ofText f.1).steps →
      FileTree.Fits (Path.ofText root) (Path.ofText f.1).steps) :
    p.IsAllOrNothing tree (Path.ofText root) ↔ IsCoherent p.files ∨ IsBlocked p.files := by
  have hplain := Path.isPlain_ofText root
  generalize Path.ofText root = root at *
  have hroot := FileTree.hasDirectory_of_makeDirectories hmake
  have hgrows : tree.Grows made := by
    simpa [hmake] using tree.grows_makeDirectories root
  obtain ⟨e, rfl, hextract⟩ : ∃ e : Extraction, made = e.tree ∧ p.extract tree root =
      ((extractFiles root e p.files).1, (extractFiles root e p.files).2.map fun _ => root.place) :=
    ⟨⟨made, [creating root]⟩, rfl, extract_of_makeDirectories hmake⟩
  unfold IsAllOrNothing
  rw [hextract]
  by_cases hcoherent : IsCoherent p.files
  · have hall : ∀ f ∈ p.files, FileTree.Fits root (Path.ofText f.1).steps :=
      fun f hf => hfits f hf (hcoherent.parentStep f hf)
    obtain ⟨e', hrun, hdone⟩ := Extracted.run hplain hcoherent hall (List.nil_append _).symm
      (extracted_nil hroot hempty)
    refine iff_of_true (.inl ⟨root.place, by rw [hrun]; rfl, fun f hf => ?_⟩) (.inl hcoherent)
    rw [hrun]
    exact hdone.read hplain hcoherent hf (hall f hf)
  · simp only [hcoherent, false_or]
    constructor
    · rintro (⟨place, hok, hread⟩ | ⟨cause, -, hkept⟩)
      · refine absurd (isCoherent_of_read hplain (hroot.mono (grows_extractFiles ..)) ?_ hread)
          hcoherent
        obtain ⟨⟨⟩, hresult, -⟩ := map_eq_ok.1 hok
        exact parentStep_of_extractFiles (Prod.ext rfl hresult)
      · have hne : p.files ≠ [] := fun h => hcoherent (h ▸ isCoherent_nil)
        exact isBlocked_of_kept hplain hroot hempty hfits hne fun q content hfile =>
          hgrows.file (hkept q content hfile)
    · intro hblocked
      obtain ⟨e', cause, hrun, hkept⟩ := hblocked.extractFiles hplain hroot
      rw [hrun]
      refine .inr ⟨cause, rfl, fun q content hq => ?_⟩
      exact FileTree.file_of_makeDirectories root (by rw [hmake]; exact hkept q content hq)

private theorem isEmptyBelow_build :
    (FileTree.empty.set ⟨false, ["build"]⟩ .directory).IsEmptyBelow
      (Path.ofText "build").target := by
  intro steps hne _
  have htarget : (Path.ofText "build").target = ⟨false, ["build"]⟩ := by cbv
  rw [htarget, FileTree.find?_set_of_ne (by simpa [Place.below] using hne)]
  have hstanding : FileTree.standing? (Place.below ⟨false, ["build"]⟩ steps) = none := by
    simp [FileTree.standing?, Place.below, Path.up, Text.ofString_inj]
  rw [FileTree.find?, hstanding]
  exact Trie.get?_empty _

/-- Two spellings of one path with the same content, and a file beside it. -/
def nested : Plan :=
  ⟨.text "top", [("lib/a", .text "x"), ("lib//a", .text "x"), ("lib/b", .text "y")], by decide⟩

private theorem fits_lib {s : Text} (hs : s = "a" ∨ s = "b") :
    FileTree.Fits (Path.ofText "build") [↑"lib", s] := by
  have hstorable (s : Text) (hs : s ∈ [↑"lib", ↑"a", ↑"b"]) : s.IsStorable := by
    simp only [List.mem_cons, List.not_mem_nil, or_false] at hs
    rcases hs with rfl | rfl | rfl <;> exact ⟨_, rfl, by decide⟩
  rcases hs with rfl | rfl
  · exact ⟨⟨rfl, rfl, trivial⟩, fun s hs => hstorable s (by simp at hs ⊢; tauto), by decide⟩
  · exact ⟨⟨rfl, rfl, trivial⟩, fun s hs => hstorable s (by simp at hs ⊢; tauto), by decide⟩

theorem nested_isAllOrNothing :
    (FileTree.empty.makeDirectories (Path.ofText "build")).2 = .ok () ∧
      nested.IsAllOrNothing FileTree.empty (Path.ofText "build") := by
  have hmake : FileTree.empty.makeDirectories (Path.ofText "build") =
      (FileTree.empty.set ⟨false, ["build"]⟩ .directory, .ok ()) := by cbv
  have hsteps : (Path.ofText "lib/a").steps = [↑"lib", ↑"a"] ∧
      (Path.ofText "lib//a").steps = [↑"lib", ↑"a"] ∧
      (Path.ofText "lib/b").steps = [↑"lib", ↑"b"] := by decide
  have hstored : storedSteps "lib/a" = [↑"lib", ↑"a"] ∧ storedSteps "lib//a" = [↑"lib", ↑"a"] ∧
      storedSteps "lib/b" = [↑"lib", ↑"b"] := by decide +kernel
  have hab : Text.ofString "a" ≠ Text.ofString "b" := by decide
  refine ⟨by rw [hmake], (extract_isAllOrNothing_iff nested hmake isEmptyBelow_build ?_).2
    (.inl ⟨?_, ?_, ?_, ?_⟩)⟩
  · intro f hf _
    simp only [nested, List.mem_cons, List.not_mem_nil, or_false] at hf
    rcases hf with rfl | rfl | rfl <;> simp only [hsteps]
    · exact fits_lib (.inl rfl)
    · exact fits_lib (.inl rfl)
    · exact fits_lib (.inr rfl)
  · simp [nested, hsteps]
    decide
  · simp [nested, hsteps]
  · simp [nested, FileContent.toBytes]
  · simp [nested, hstored, hab, hab.symm]

/-- A file before one whose name leads up. -/
def escaping : Plan := ⟨.text "top", [("a", .text "x"), ("../b", .text "y")], by decide⟩

/-- The step up is noticed when the first file has been written. -/
theorem escaping_not_isAllOrNothing :
    ¬escaping.IsAllOrNothing FileTree.empty (Path.ofText "build") := by
  have hresult : (escaping.extract FileTree.empty (Path.ofText "build")).2 =
      .error .parentStep := by cbv
  have hfile : (escaping.extract FileTree.empty (Path.ofText "build")).1.tree.find?
      ⟨false, ["build", "a"]⟩ = some (.file [120]) := by decide +kernel
  rintro (⟨place, hok, -⟩ | ⟨cause, -, hkept⟩)
  · cases hresult.symm.trans hok
  · exact absurd (hkept _ _ hfile) (by decide)

end Plan

end Latchwork
