import Latchwork.Proofs.AllOrNothing
import Latchwork.Proofs.Encodable

/-!
# Plans of files in one directory

If every file of a plan is an entry of the root directory and has bytes, extraction can only fail
outside the plan: the root directory cannot be made, a path is too long for the file system, or a
directory stands where a file should be. Into an empty directory all files are written, since names
that differ are stored under different names.
-/

namespace Latchwork

open Outcome

/-! ## Names that are stored as they are -/

namespace Text

private theorem utf8EncodeChar_append_inj {c d : Char} {x y : Bytes}
    (h : String.utf8EncodeChar c ++ x = String.utf8EncodeChar d ++ y) : c = d := by
  have hread : ∀ (e : Char) (z : Bytes),
      (String.utf8EncodeChar e ++ z).toByteArray.utf8DecodeChar? 0 = some e := by
    intro e z
    rw [List.toByteArray_append]
    exact ByteArray.utf8DecodeChar?_utf8EncodeChar_append
  have hc := hread c x
  rw [h, hread d y] at hc
  exact (Option.some.inj hc).symm

private theorem string?_bytes (s : String) : (Bytes.ofString s).string? = some s := by
  show String.fromUTF8? s.toUTF8 = some s
  exact dif_pos s.isValidUTF8

/-- The bytes of a character are read as that character. -/
theorem pointsOfName_append (c : Char) (rest : Bytes) :
    pointsOfName (String.utf8EncodeChar c ++ rest) = .char c :: pointsOfName rest := by
  have hsize : (String.utf8EncodeChar c).length ∈ [1, 2, 3, 4] := by
    have hpos := c.utf8Size_pos
    have hle := c.utf8Size_le_four
    rw [String.length_utf8EncodeChar]
    simp only [List.mem_cons, List.not_mem_nil, or_false]
    omega
  have hsome : leadingChar? (String.utf8EncodeChar c ++ rest) ≠ none := by
    intro hnone
    have htried := List.findSome?_eq_none_iff.mp hnone _ hsize
    rw [List.take_left, ← ofString_singleton, string?_bytes] at htried
    simp at htried
  cases hlead : leadingChar? (String.utf8EncodeChar c ++ rest) with
  | none => exact absurd hlead hsome
  | some found =>
    obtain ⟨d, size⟩ := found
    obtain ⟨hpos, htake⟩ := take_of_leadingChar? hlead
    have hsplit : String.utf8EncodeChar d ++ (String.utf8EncodeChar c ++ rest).drop size =
        String.utf8EncodeChar c ++ rest := by
      rw [← htake, List.take_append_drop]
    obtain rfl : d = c := utf8EncodeChar_append_inj hsplit
    have hdrop : (String.utf8EncodeChar d ++ rest).drop size = rest :=
      List.append_cancel_left hsplit
    obtain ⟨first, others, hcons⟩ :=
      List.exists_cons_of_ne_nil (List.append_ne_nil_of_left_ne_nil
        (String.utf8EncodeChar_ne_nil (c := d)) rest)
    obtain ⟨size, rfl⟩ : ∃ k, size = k + 1 := ⟨size - 1, by omega⟩
    rw [hcons] at hlead hdrop ⊢
    rw [pointsOfName, hlead]
    simp only [Nat.add_sub_cancel]
    rw [show others.drop size = rest from hdrop]

private theorem nameBytesFrom_chars (k : Nat) (cs : List Char) :
    nameBytesFrom k (cs.map CodePoint.char) = .ok (cs.flatMap String.utf8EncodeChar) := by
  induction cs generalizing k with
  | nil => rfl
  | cons c rest ih =>
    simp [nameBytesFrom, CodePoint.char?, ih, Except.map, ofString_singleton]

private theorem nameBytes_ofString (s : String) :
    (ofString s).nameBytes = .ok (s.toList.flatMap String.utf8EncodeChar) := by
  rw [nameBytes, points_ofString]
  exact nameBytesFrom_chars 0 s.toList

private theorem stored_ofString (s : String) : (ofString s).stored = ofString s := by
  rw [stored_of_nameBytes (nameBytes_ofString s)]
  ext1
  rw [points_ofString]
  show pointsOfName _ = _
  induction s.toList with
  | nil => rw [List.flatMap_nil, pointsOfName, List.map_nil]
  | cons c rest ih => rw [List.flatMap_cons, pointsOfName_append, ih, List.map_cons]

/-! ## Spellings -/

/-- Can the text stand in the spelling of a path? -/
def IsSpellable (t : Text) : Prop := ∃ b, t.nameBytes = .ok b ∧ 0 ∉ b

private theorem nameBytesFrom_shift {points : List CodePoint} {b : Bytes} {j : Nat}
    (h : nameBytesFrom j points = .ok b) (k : Nat) : nameBytesFrom k points = .ok b := by
  induction points generalizing b j k with
  | nil => exact h
  | cons p rest ih =>
    rw [nameBytesFrom] at h ⊢
    split at h
    · obtain ⟨rest', hrest, rfl⟩ := map_eq_ok.mp h
      rw [ih hrest (k + 1)]
      rfl
    · obtain ⟨rest', hrest, rfl⟩ := map_eq_ok.mp h
      rw [ih hrest (k + 1)]
      rfl
    · cases h

/-- The bytes of two names together. -/
theorem nameBytesFrom_append {xs ys : List CodePoint} {a b : Bytes} {j k : Nat}
    (hx : nameBytesFrom j xs = .ok a) (hy : nameBytesFrom k ys = .ok b) :
    nameBytesFrom j (xs ++ ys) = .ok (a ++ b) := by
  induction xs generalizing a j with
  | nil =>
    cases hx
    exact nameBytesFrom_shift hy j
  | cons p rest ih =>
    rw [List.cons_append, nameBytesFrom]
    rw [nameBytesFrom] at hx
    split at hx
    · obtain ⟨rest', hrest, rfl⟩ := map_eq_ok.mp hx
      rw [ih hrest, List.append_assoc]
      rfl
    · obtain ⟨rest', hrest, rfl⟩ := map_eq_ok.mp hx
      rw [ih hrest]
      rfl
    · cases hx

private theorem IsSpellable.append {s t : Text} (hs : s.IsSpellable) (ht : t.IsSpellable) :
    (s ++ t).IsSpellable := by
  obtain ⟨a, ha, hzero⟩ := hs
  obtain ⟨b, hb, hzero'⟩ := ht
  exact ⟨a ++ b, nameBytesFrom_append ha hb, by simp [hzero, hzero']⟩

private theorem eq_null_of_mem {c : Char} (h : 0 ∈ String.utf8EncodeChar c) : c = '\x00' := by
  have htoNat : c.toNat = c.val.toNat := rfl
  have hc : c.val.toNat = 0 := by
    unfold String.utf8EncodeChar at h
    simp only at h
    split_ifs at h <;> simp [← UInt8.toNat_inj] at h <;> omega
  exact Char.ext (UInt32.toNat_inj.1 hc)

private theorem isSpellable_ofString {s : String} (h : '\x00' ∉ s.toList) :
    (ofString s).IsSpellable := by
  refine ⟨_, nameBytes_ofString s, ?_⟩
  intro hzero
  obtain ⟨c, hc, hmem⟩ := List.mem_flatMap.mp hzero
  exact h (eq_null_of_mem hmem ▸ hc)

end Text

/-! ## Writing to a directory that is there -/

namespace Path

private theorem intercalate_concat {α : Type} (separator : List α) {xs : List (List α)}
    (hne : xs ≠ []) (y : List α) :
    separator.intercalate (xs ++ [y]) = separator.intercalate xs ++ separator ++ y := by
  induction xs with
  | nil => exact absurd rfl hne
  | cons x rest ih =>
    by_cases hrest : rest = []
    · simp [hrest]
    · rw [List.cons_append, List.intercalate_cons_of_ne_nil (by simp),
        List.intercalate_cons_of_ne_nil hrest, ih hrest]
      simp

private theorem text_append_singleton {root : Path} (hne : root.steps ≠ []) (s : Text) :
    (root.append [s]).text = root.text ++ "/" ++ s := by
  ext1
  rw [points_text (by simp [append]), Text.points_append, Text.points_append, points_text hne]
  simp only [append, List.map_append, List.map_cons, List.map_nil]
  rw [intercalate_concat _ (by simpa using hne)]
  simp

end Path

namespace FileTree

variable {t : FileTree} {root : Path} {name : Text}

private theorem isSpellable_of_checkSpelling (h : checkSpelling name = .ok ()) :
    name.IsSpellable := by
  obtain ⟨b, hb, hcheck⟩ := bind_eq_ok.mp h
  refine ⟨b, hb, fun hzero => ?_⟩
  simp [hzero] at hcheck

private theorem checkSpelling_of_isSpellable (h : name.IsSpellable) (hne : name.points ≠ []) :
    checkSpelling name = .ok () ∨ checkSpelling name = .error (.file .nameTooLong) := by
  obtain ⟨b, hb, hzero⟩ := h
  have hbytes : b ≠ [] := by
    rintro rfl
    exact hne (Text.eq_nil_of_nameBytesFrom hb)
  have hcheck : checkSpelling name =
      if spellingLimit < b.length then .error (.file .nameTooLong) else .ok () := by
    simp [checkSpelling, hb, hzero, hbytes, bind, Except.bind, pure, Except.pure, throw,
      throwThe, MonadExceptOf.throw]
  rw [hcheck]
  split
  · exact .inr rfl
  · exact .inl rfl

private theorem missing_eq_zero {p : Place} {steps : List Text} (hleads : t.Leads p steps)
    (hdir : t.find? (p.follow steps) = some .directory) : t.missing p steps = 0 := by
  induction steps generalizing p with
  | nil => rfl
  | cons s rest ih =>
    obtain ⟨hfirst, hs, hrest⟩ := hleads
    have hnext : t.find? (p.next s.stored) = some .directory := hrest.directory hdir
    rw [missing, step_eq_ok.mpr ⟨hfirst, hs, rfl⟩]
    simp only [hnext, Option.isSome_some, if_true]
    exact ih hrest hdir

private theorem HasDirectory.makeDirectories_eq (h : t.HasDirectory root) :
    t.makeDirectories root = (t, .ok ()) := by
  have hmissing : t.missing root.origin root.steps = 0 := missing_eq_zero h.leads h.directory
  have hmake := (makeSteps_append [] h.spelled h.leads (by simpa using h.directory)).1
  rw [List.append_nil] at hmake
  unfold makeDirectories
  rw [if_neg (by omega)]
  exact hmake

private theorem HasDirectory.exists_text (h : t.HasDirectory root) (s : Text) :
    ∃ start : Text, start.IsSpellable ∧ (root.append [s]).text = start ++ s := by
  by_cases hne : root.steps = []
  · refine ⟨Text.ofString (String.ofList (List.replicate root.slashes '/')),
      Text.isSpellable_ofString (by simp), ?_⟩
    ext1
    rw [Path.points_text (by simp [Path.append])]
    simp [Path.append, hne]
  · have hspelling := h.spelled.text hne
    rw [Path.start_append_steps] at hspelling
    have hroot : root.text.IsSpellable := isSpellable_of_checkSpelling hspelling
    exact ⟨root.text ++ "/", hroot.append (Text.isSpellable_ofString (by decide)),
      Path.text_append_singleton hne s⟩

private theorem step_eq {p : Place} (hdir : t.find? p = some .directory) {s : Text}
    (hs : s.IsSpellable) :
    t.step p s = .ok (p.next s.stored) ∨ t.step p s = .error (.file .nameTooLong) := by
  obtain ⟨b, hb, -⟩ := hs
  have hstep : t.step p s =
      if stepLimit < b.length then .error (.file .nameTooLong) else .ok (p.next s.stored) := by
    rw [Text.stored_of_nameBytes hb]
    simp [step, hdir, hb, bind, Except.bind, pure, Except.pure, throw, throwThe,
      MonadExceptOf.throw]
  rw [hstep]
  split
  · exact .inr rfl
  · exact .inl rfl

/-- Why a path in plain spelling cannot be written to: its spelling, a step on the way, or a
directory in its place. -/
theorem write_eq_error {p : Path} (hplain : p.IsPlain) (hne : p.steps ≠ []) {content : Bytes}
    {cause : Error} (h : t.write p.text content = .error cause) :
    checkSpelling p.text = .error cause ∨ t.walk p.origin p.steps = .error cause ∨
      cause = .file .isDirectory := by
  rcases bind_eq_error.mp h with hopen | ⟨q, -, hq⟩
  · rcases bind_eq_error.mp hopen with hspelling | ⟨u, -, hrest⟩
    · exact .inl hspelling
    · rw [if_neg (by simp [Path.endsWith_text hplain hne])] at hrest
      rcases bind_eq_error.mp hrest with hlocate | ⟨q, -, hq⟩
      · rw [locate, Path.origin_ofText_text hplain hne, Path.stepsOf_text hplain hne] at hlocate
        exact .inr (.inl hlocate)
      · split at hq
        · cases hq
          exact .inr (.inr rfl)
        · cases hq
  · split at hq <;> cases hq

/-- A file in a directory that is there cannot be written only if its path is too long or a
directory stands in its place. -/
theorem HasDirectory.write_eq_error (h : t.HasDirectory root) (hplain : root.IsPlain) {s : Text}
    (hstep : Path.IsStep s) (hs : s.IsSpellable) {content : Bytes} {cause : Error}
    (herror : t.write (root.append [s]).text content = .error cause) :
    cause = .file .nameTooLong ∨ cause = .file .isDirectory := by
  have hne : (root.append [s]).steps ≠ [] := by simp [Path.append]
  have hpath : (root.append [s]).IsPlain := hplain.append (by simpa using hstep)
  rcases FileTree.write_eq_error hpath hne herror with hspelling | hwalk | hdir
  · obtain ⟨start, hstart, htext⟩ := h.exists_text s
    have hspellable : (root.append [s]).text.IsSpellable := by
      rw [htext]
      exact hstart.append hs
    have hpoints : (root.append [s]).text.points ≠ [] := by
      rw [htext, Text.points_append]
      exact List.append_ne_nil_of_right_ne_nil _ hstep.ne_nil
    rcases checkSpelling_of_isSpellable hspellable hpoints with hok | hlong
    · cases hok.symm.trans hspelling
    · cases hlong.symm.trans hspelling
      exact .inl rfl
  · have hlast : t.walk root.origin (root.steps ++ [s]) = t.step root.target s := by
      have hroot : t.walk root.origin root.steps = .ok root.target :=
        walk_eq_ok.mpr ⟨h.leads, rfl⟩
      unfold walk at hroot ⊢
      rw [List.foldlM_append, hroot]
      exact foldlM_singleton
    rcases step_eq h.directory hs with hok | hlong
    · cases (hok.symm.trans hlast.symm).trans hwalk
    · cases (hlong.symm.trans hlast.symm).trans hwalk
      exact .inl rfl
  · exact .inr hdir

end FileTree

/-! ## Files in the root directory -/

namespace Text.IsFileName

variable {t : Text}

private theorem ne_here (h : t.IsFileName) : t ≠ Path.here := by
  rintro rfl
  exact h.ending rfl

private theorem ne_up (h : t.IsFileName) : t ≠ Path.up := by
  rintro rfl
  exact h.ending rfl

private theorem isOrdinary (h : t.IsFileName) : Path.IsOrdinary t :=
  ⟨⟨h.nonempty, h.ne_here, h.slash⟩, h.ne_up⟩

private theorem steps_ofText (h : t.IsFileName) : (Path.ofText t).steps = [t] := by
  have hsteps : Path.stepsOf t = [t] := by
    rw [Path.stepsOf_eq, List.splitOn_eq_singleton h.slash]
    simp [h.nonempty]
  show (Path.stepsOf t).filter (· != Path.here) = [t]
  rw [hsteps]
  simp [h.ne_here]

end Text.IsFileName

namespace Plan

/-- Is every file an entry of the root directory, with a string as its name and bytes to write? -/
structure IsFlat (files : List (Text × FileContent)) : Prop where
  fileName : ∀ f ∈ files, f.1.IsFileName
  string : ∀ f ∈ files, f.1.IsString
  encodable : ∀ f ∈ files, ∃ bytes, f.2.toBytes = .ok bytes

namespace IsFlat

variable {root : Path} {e e' : Extraction} {f : Text × FileContent}
  {files : List (Text × FileContent)} {cause : Error}

private theorem isSpellable (h : IsFlat files) (hf : f ∈ files) : f.1.IsSpellable := by
  obtain ⟨s, hs⟩ := h.string f hf
  have hnull := (h.fileName f hf).null
  rw [hs] at hnull ⊢
  exact Text.isSpellable_ofString (by simpa using hnull)

/-- A file of the root directory cannot be extracted only if its path is too long or a directory
stands in its place. -/
theorem extractFile_eq_error (h : IsFlat files) (hf : f ∈ files) (hplain : root.IsPlain)
    (hroot : e.tree.HasDirectory root) (herror : extractFile root e f.1 f.2 = (e', .error cause)) :
    cause = .file .nameTooLong ∨ cause = .file .isDirectory := by
  have hname := h.fileName f hf
  have hsteps := hname.steps_ofText
  obtain ⟨bytes, hbytes⟩ := h.encodable f hf
  have htarget : targetOf root f.1 = root.append [f.1] := by rw [targetOf, hsteps]
  have hmade : e.tree.makeDirectories (targetOf root f.1).parent = (e.tree, .ok ()) := by
    have hparent : (targetOf root f.1).parent = root := by simp [htarget, Path.parent, Path.append]
    rw [hparent]
    exact hroot.makeDirectories_eq
  have hcases := extracting root e f.1 f.2
  rw [herror] at hcases
  cases hcases with
  | parentStep hup =>
    rw [hsteps] at hup
    exact absurd (List.mem_singleton.mp hup).symm hname.ne_up
  | unmade _ hmake => cases hmade.symm.trans hmake
  | unencodable _ _ hopening =>
    cases (FileContent.opening?_of_toBytes hbytes).symm.trans hopening
  | unopened _ hmake _ hwrite =>
    cases hmade.symm.trans hmake
    rw [htarget] at hwrite
    exact hroot.write_eq_error hplain hname.isOrdinary.toIsStep (h.isSpellable hf) hwrite
  | emptied _ _ _ hcontent => cases hbytes.symm.trans hcontent

/-- Files of the root directory are extracted up to one whose path is too long or in whose place a
directory stands. -/
theorem extractFiles_eq_error (h : IsFlat files) (hplain : root.IsPlain)
    (hroot : e.tree.HasDirectory root) (herror : (extractFiles root e files).2 = .error cause) :
    cause = .file .nameTooLong ∨ cause = .file .isDirectory := by
  induction files generalizing e with
  | nil => cases herror
  | cons f rest ih =>
    have hgrows := (extracting root e f.1 f.2).grows
    cases hfile : extractFile root e f.1 f.2 with
    | mk next result =>
    cases result with
    | error cause' =>
      rw [extractFiles_cons_error hfile] at herror
      cases herror
      exact h.extractFile_eq_error (.head _) hplain hroot hfile
    | ok _ =>
      rw [extractFiles_cons_ok hfile] at herror
      rw [hfile] at hgrows
      refine ih ⟨?_, ?_, ?_⟩ (hroot.mono hgrows) herror
      · exact fun g hg => h.fileName g (.tail _ hg)
      · exact fun g hg => h.string g (.tail _ hg)
      · exact fun g hg => h.encodable g (.tail _ hg)

/-- Extraction fails only if the root directory cannot be made, a path is too long, or a directory
stands in the place of a file. -/
theorem extract_eq_error {p : Plan} (h : IsFlat p.files) {tree : FileTree} (hplain : root.IsPlain)
    (herror : (p.extract tree root).2 = .error cause) :
    (tree.makeDirectories root).2 = .error cause ∨ cause = .file .nameTooLong ∨
      cause = .file .isDirectory := by
  cases hmake : tree.makeDirectories root with
  | mk made result =>
  cases result with
  | error cause' =>
    have hextract : (p.extract tree root).2 = .error cause' := by
      unfold extract
      rw [hmake]
    cases hextract.symm.trans herror
    exact .inl rfl
  | ok _ =>
    rw [extract_of_makeDirectories hmake] at herror
    have hroot := FileTree.hasDirectory_of_makeDirectories hmake
    exact .inr (h.extractFiles_eq_error hplain hroot (map_eq_error.mp herror))

/-- The files do not stand in each other's way. -/
theorem isCoherent (h : IsFlat files) (hnodup : (files.map Prod.fst).Nodup) : IsCoherent files := by
  have hstored : ∀ f ∈ files, storedSteps f.1 = [f.1] := by
    intro f hf
    obtain ⟨s, hs⟩ := h.string f hf
    rw [storedSteps, (h.fileName f hf).steps_ofText, hs]
    simp [Text.stored_ofString]
  constructor
  · intro f hf hup
    rw [(h.fileName f hf).steps_ofText] at hup
    exact (h.fileName f hf).ne_up (List.mem_singleton.mp hup).symm
  · intro f hf
    simp [(h.fileName f hf).steps_ofText]
  · exact h.encodable
  · intro f hf g hg hinit
    rw [hstored f hf, hstored g hg] at hinit ⊢
    have hname : f.1 = g.1 := by simpa using hinit
    obtain rfl : f = g := List.inj_on_of_nodup_map hnodup hf hg hname
    exact ⟨rfl, rfl⟩

/-- Into an empty directory all files are written, if their paths are within the limits. -/
theorem extract_eq_ok {p : Plan} (h : IsFlat p.files) {tree made : FileTree} (hplain : root.IsPlain)
    (hmake : tree.makeDirectories root = (made, .ok ())) (hempty : made.IsEmptyBelow root.target)
    (hfits : ∀ f ∈ p.files, FileTree.Fits root [f.1]) :
    (p.extract tree root).2 = .ok root.place ∧
      ∀ f ∈ p.files, ∃ bytes, f.2.toBytes = .ok bytes ∧
        (p.extract tree root).1.tree.read (targetOf root f.1).text = .ok bytes := by
  have hcoherent := h.isCoherent p.namesDistinct
  have hroot := FileTree.hasDirectory_of_makeDirectories hmake
  have hall : ∀ f ∈ p.files, FileTree.Fits root (Path.ofText f.1).steps := by
    intro f hf
    rw [(h.fileName f hf).steps_ofText]
    exact hfits f hf
  obtain ⟨e, hrun, hdone⟩ := Extracted.run hplain hcoherent hall (List.nil_append _).symm
    (e := ⟨made, [creating root]⟩) (extracted_nil hroot hempty)
  rw [extract_of_makeDirectories hmake, hrun]
  exact ⟨rfl, fun f hf => hdone.read hplain hcoherent hf (hall f hf)⟩

end IsFlat

/-- Is a plan safe to extract? Its files can be added one after another, and each is an entry of the
root directory. Extraction fails only outside the plan: if the root directory cannot be made, a path
is too long, or a directory stands in the place of a file. Into an empty directory every file is
written. -/
structure IsSafe (p : Plan) : Prop where
  distinct : (p.files.map Prod.fst).Nodup
  step : ∀ f ∈ p.files, (Path.ofText f.1).steps = [f.1] ∧ f.1 ≠ Path.here ∧ f.1 ≠ Path.up
  added : p.files.foldlM (fun q f => add q f.1 f.2) (.empty p.name) = .ok p
  failure : ∀ (tree : FileTree) (root : Text) (cause : Error),
    (p.extract tree (Path.ofText root)).2 = .error cause →
      (tree.makeDirectories (Path.ofText root)).2 = .error cause ∨ cause = .file .nameTooLong ∨
        cause = .file .isDirectory
  success : ∀ (tree made : FileTree) (root : Text),
    tree.makeDirectories (Path.ofText root) = (made, .ok ()) →
    made.IsEmptyBelow (Path.ofText root).target →
    (∀ f ∈ p.files, FileTree.Fits (Path.ofText root) [f.1]) →
      (p.extract tree (Path.ofText root)).2 = .ok (Path.ofText root).place ∧
        ∀ f ∈ p.files, ∃ bytes, f.2.toBytes = .ok bytes ∧
          (p.extract tree (Path.ofText root)).1.tree.read (targetOf (Path.ofText root) f.1).text =
            .ok bytes

private theorem eq_of_files {p q : Plan} (hname : p.name = q.name) (hfiles : p.files = q.files) :
    p = q := by
  obtain ⟨name, files, hdistinct⟩ := p
  cases hname
  cases hfiles
  rfl

private theorem foldlM_add {p : Plan} (h : ∀ f ∈ p.files, isAbsoluteName f.1 = false) :
    p.files.foldlM (fun q f => add q f.1 f.2) (.empty p.name) = .ok p := by
  obtain ⟨q, hq, hfiles, hname⟩ :=
    (empty p.name).exists_foldlM_add p.files (by simpa [empty] using p.namesDistinct) h
  have heq : q = p := eq_of_files hname hfiles
  rw [hq, heq]

/-- A plan of files in the root directory is safe to extract. -/
theorem IsFlat.isSafe {p : Plan} (h : IsFlat p.files) : p.IsSafe where
  distinct := p.namesDistinct
  step f hf :=
    ⟨(h.fileName f hf).steps_ofText, (h.fileName f hf).ne_here, (h.fileName f hf).ne_up⟩
  added := foldlM_add fun f hf => (h.fileName f hf).isAbsoluteName_eq
  failure _ root _ := h.extract_eq_error (Path.isPlain_ofText root)
  success _ _ root := h.extract_eq_ok (Path.isPlain_ofText root)

end Plan

end Latchwork
